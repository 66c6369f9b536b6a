import LadderLogic.Bank
import LadderLogic.Device
import LadderLogic.Diagram.Cell
import LadderLogic.Diagram.Closure
import LadderLogic.Diagram.Layout
import LadderLogic.Diagram.Picture
import LadderLogic.Diagram.Power
import LadderLogic.Diagram.Strip
import LadderLogic.Draft.Basic
import LadderLogic.Draft.Diagram
import LadderLogic.Draft.Edit
import LadderLogic.Draft.Scan
import LadderLogic.Instruction
import LadderLogic.Instruction.Record
import LadderLogic.Json.Argument
import LadderLogic.Json.Basic
import LadderLogic.Json.Convert
import LadderLogic.Json.Reader
import LadderLogic.Json.Writer
import LadderLogic.Key
import LadderLogic.Listing
import LadderLogic.Memory
import LadderLogic.Number.Binary64
import LadderLogic.Number.Numeral
import LadderLogic.Number.Shortest
import LadderLogic.Opcode
import LadderLogic.Operand
import LadderLogic.Project.Basic
import LadderLogic.Project.Stamp
import LadderLogic.Proofs.Agreement
import LadderLogic.Proofs.BlockSteps
import LadderLogic.Proofs.Blocks
import LadderLogic.Proofs.BranchStack
import LadderLogic.Proofs.Branching
import LadderLogic.Proofs.Canonical
import LadderLogic.Proofs.Canvas
import LadderLogic.Proofs.Comments
import LadderLogic.Proofs.Counters
import LadderLogic.Proofs.Decimal
import LadderLogic.Proofs.Deferral
import LadderLogic.Proofs.DeviceTables
import LadderLogic.Proofs.DigitLimit
import LadderLogic.Proofs.Documents
import LadderLogic.Proofs.Drawing
import LadderLogic.Proofs.EditSessions
import LadderLogic.Proofs.Edits
import LadderLogic.Proofs.Escapes
import LadderLogic.Proofs.Extent
import LadderLogic.Proofs.Flow
import LadderLogic.Proofs.FlowSteps
import LadderLogic.Proofs.Footprint
import LadderLogic.Proofs.Independence
import LadderLogic.Proofs.InsertedPulses
import LadderLogic.Proofs.Links
import LadderLogic.Proofs.Literals
import LadderLogic.Proofs.Mixed
import LadderLogic.Proofs.Outcomes
import LadderLogic.Proofs.Outline
import LadderLogic.Proofs.Overlay
import LadderLogic.Proofs.Placement
import LadderLogic.Proofs.ProjectFile
import LadderLogic.Proofs.Pulses
import LadderLogic.Proofs.Reachability
import LadderLogic.Proofs.Refusals
import LadderLogic.Proofs.Regions
import LadderLogic.Proofs.Retention
import LadderLogic.Proofs.ScanCounts
import LadderLogic.Proofs.Sequencer
import LadderLogic.Proofs.SeriesJoin
import LadderLogic.Proofs.SeriesParallel
import LadderLogic.Proofs.Sheet
import LadderLogic.Proofs.Stacking
import LadderLogic.Proofs.Steps
import LadderLogic.Proofs.Strips
import LadderLogic.Proofs.Timers
import LadderLogic.Proofs.Tracking
import LadderLogic.Proofs.Turns
import LadderLogic.Proofs.Wiring
import LadderLogic.Proofs.WriteLog
import LadderLogic.Request
import LadderLogic.Sample
import LadderLogic.Scan
import LadderLogic.Session.Basic
import LadderLogic.Session.Clock
import LadderLogic.Session.History
import LadderLogic.State
import LadderLogic.Text.Basic
import LadderLogic.Text.Blank
import LadderLogic.Text.Capital
import LadderLogic.Text.Digit
import LadderLogic.Text.Hex
import LadderLogic.Text.Lines
import LadderLogic.Text.Printable
import LadderLogic.Text.Quoted
import LadderLogic.Text.Utf8
