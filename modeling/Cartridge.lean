import Cartridge.Json.Printer
import Cartridge.Main
import Cartridge.Proofs.Acceptance
import Cartridge.Proofs.Capacity
import Cartridge.Proofs.Coherence
import Cartridge.Proofs.Commitment
import Cartridge.Proofs.DataUnits
import Cartridge.Proofs.Evaluation
import Cartridge.Proofs.Failures
import Cartridge.Proofs.FoldOrder
import Cartridge.Proofs.Footprint
import Cartridge.Proofs.HeaderPlacement
import Cartridge.Proofs.History
import Cartridge.Proofs.ImageFormat
import Cartridge.Proofs.Internal
import Cartridge.Proofs.Listing
import Cartridge.Proofs.Mirror
import Cartridge.Proofs.Qualified
import Cartridge.Proofs.Ram
import Cartridge.Proofs.Rearrangement
import Cartridge.Proofs.Replay
import Cartridge.Proofs.RoundTrip
import Cartridge.Proofs.Safety
import Cartridge.Proofs.Silence
import Cartridge.Source.Shorthand
import Cartridge.Source.Writer
