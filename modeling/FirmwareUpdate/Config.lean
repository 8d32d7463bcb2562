import FirmwareUpdate.Cipher.Aes256
import FirmwareUpdate.Connection
import FirmwareUpdate.Layout

/-!
# Settings of an update

Settings hold for the whole life of an engine.
-/

namespace FirmwareUpdate

/-- The settings of an update engine. -/
structure Config where
  key : Aes256.Key
  /-- The lowest address data may be written to; the boot record of the application is here. -/
  appBase : UInt32 := Layout.appBase
  appLimit : UInt32 := Layout.bootloaderBase
  connection : Connection.Parameters := {}
  /-- The largest data packet accepted, its address included. -/
  maxPacket : Nat := Connection.maxPacketSize
deriving DecidableEq

namespace Config

/-- Whether the application region holds `length` bytes from an address on. -/
def Admits (config : Config) (address length : UInt32) : Prop :=
  config.appBase ≤ address ∧ address.toNat + length.toNat ≤ config.appLimit.toNat

instance (config : Config) (address length : UInt32) : Decidable (config.Admits address length) :=
  inferInstanceAs (Decidable (_ ∧ _))

def withRegion (config : Config) (base limit : UInt32) : Config :=
  { config with appBase := base, appLimit := limit }

end Config

end FirmwareUpdate
