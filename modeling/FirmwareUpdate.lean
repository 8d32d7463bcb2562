import FirmwareUpdate.Device.Turns
import FirmwareUpdate.Layout.LinkerScript
import FirmwareUpdate.Proofs.Engine.Coverage
import FirmwareUpdate.Proofs.Engine.Lifetime
import FirmwareUpdate.Proofs.Engine.Transfer
import FirmwareUpdate.Simulation.Bench
import FirmwareUpdate.Proofs.Position
import FirmwareUpdate.Proofs.Engine.Payload
import FirmwareUpdate.Proofs.Engine.Position
import FirmwareUpdate.Proofs.Engine.Region
import FirmwareUpdate.Proofs.Flash.Reliable
import FirmwareUpdate.Proofs.Engine.Resumption
import FirmwareUpdate.Proofs.Engine.Resync
import FirmwareUpdate.Proofs.Engine.Loss
import FirmwareUpdate.Proofs.Device.Interleaving
import FirmwareUpdate.Proofs.Device.Reboot
import FirmwareUpdate.Proofs.Engine.Afresh
import FirmwareUpdate.Proofs.Engine.Streams
import FirmwareUpdate.Proofs.Device.Boots
import FirmwareUpdate.Proofs.Device.Resets
import FirmwareUpdate.Proofs.Engine.Untaken
import FirmwareUpdate.Proofs.Engine.Refusals
import FirmwareUpdate.Proofs.Engine.Disregarded
import FirmwareUpdate.Proofs.Engine.DigestGate
import FirmwareUpdate.Proofs.Engine.Untouched
import FirmwareUpdate.Proofs.Record
import FirmwareUpdate.Proofs.Retries
import FirmwareUpdate.Proofs.Engine.Halting
import FirmwareUpdate.Proofs.Engine.Reports
import FirmwareUpdate.Proofs.Spans
import FirmwareUpdate.Proofs.Engine.Counting
import FirmwareUpdate.Proofs.Engine.Ranges
import FirmwareUpdate.Proofs.Engine.Rounds
