import OklchGate.Main
import OklchGate.Proofs.Color.Hues
import OklchGate.Proofs.Color.Spellings
import OklchGate.Proofs.CommandLine.Executing
import OklchGate.Proofs.Config.Extensions
import OklchGate.Proofs.Css.ColorValues
import OklchGate.Proofs.Css.Culprits
import OklchGate.Proofs.Css.Edits
import OklchGate.Proofs.Css.Gaps
import OklchGate.Proofs.Gate.Accounting
import OklchGate.Proofs.Gate.Appending
import OklchGate.Proofs.Gate.Indents
import OklchGate.Proofs.Gate.OrdinarySheets
import OklchGate.Proofs.Gate.Rebreaking
import OklchGate.Proofs.Gate.Repeating
import OklchGate.Proofs.Gate.Rows
import OklchGate.Proofs.Gate.Settling
import OklchGate.Proofs.Mapping.Anchors
import OklchGate.Proofs.Mapping.ClosingLines
import OklchGate.Proofs.Mapping.Rebreaking
import OklchGate.Proofs.Mapping.Separators
import OklchGate.Proofs.Mapping.Tables
import OklchGate.Proofs.Run.Flags
import OklchGate.Proofs.Run.Predicting
import OklchGate.Proofs.Run.Scanning
import OklchGate.Proofs.Text.Positions
