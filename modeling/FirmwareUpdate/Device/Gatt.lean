import FirmwareUpdate.Connection
import FirmwareUpdate.Text.Hexadecimal
import FirmwareUpdate.Wire.ControlPacket
import FirmwareUpdate.Wire.Progress

/-!
# The radio as the peer sees it

The update service with its three characteristics, the settings of the radio, and what is
advertised while no peer is connected.
-/

namespace FirmwareUpdate

abbrev Uuid := BitVec 128

namespace Uuid

/-- The sixteen bytes of an identifier, lowest first. -/
def toBytes (u : Uuid) : Bytes := LittleEndian.digits 16 u.toNat

def digits (u : Uuid) : String := Hexadecimal.digits 32 u.toNat

/-- The digits in groups of 8, 4, 4, 4 and 12. -/
def text (u : Uuid) : String :=
  let cs := u.digits.toList
  let group (start length : Nat) : String := String.ofList ((cs.drop start).take length)
  "-".intercalate [group 0 8, group 8 4, group 12 4, group 16 4, group 20 12]

end Uuid

namespace Device

def serviceUuid : Uuid := 0x95301000963f46b1b8010b23e8904835#128

def name : String := "Passport Prime OTA"

def shortName : String := "OTA"

/-! ### Characteristics -/

/-- What the peer may do with a characteristic. -/
inductive Property where
  | write
  | writeWithoutResponse
  | notify
deriving DecidableEq, Repr

/-- A value of the update service. -/
inductive Characteristic where
  /-- Takes control packets, and tells whether each was accepted. -/
  | control
  /-- Takes data packets, and tells when one was rejected. -/
  | data
  /-- Tells where to resume and which digest failed. -/
  | progress
deriving DecidableEq, Repr

namespace Characteristic

def all : List Characteristic := [control, data, progress]

def uuid : Characteristic → Uuid
  | control => 0x95301001963f46b1b8010b23e8904835#128
  | data => 0x95301002963f46b1b8010b23e8904835#128
  | progress => 0x95301003963f46b1b8010b23e8904835#128

def properties : Characteristic → List Property
  | control => [.write, .notify]
  | data => [.writeWithoutResponse, .notify]
  | progress => [.notify]

def maxLength : Characteristic → Nat
  | control => ControlPacket.size
  | data => Connection.attMtu
  | progress => Progress.size

def writable (c : Characteristic) : Bool :=
  c.properties.any fun p => p = .write || p = .writeWithoutResponse

end Characteristic

/-! ### Settings of the radio -/

inductive ClockSource where
  | crystal
deriving DecidableEq, Repr

/-- The settings with which the radio is switched on. -/
structure RadioSettings where
  clockSource : ClockSource := .crystal
  clockAccuracyPpm : Nat := 20
  /-- How often a clock that is no crystal is calibrated. -/
  calibrationInterval : Nat := 0
  /-- How often it is calibrated when the temperature stays the same. -/
  calibrationTemperatureInterval : Nat := 0
  connectionCount : Nat := 1
  /-- The length of a connection event, in units of 1.25 ms. -/
  eventLength : Nat := 24
  attMtu : Nat := Connection.attMtu
  /-- The size of the attribute table, where it is not the usual one. -/
  attributeTableSize : Option Nat := none
  advertisingSets : Nat := 1
  peripheralRoles : Nat := 1
  deviceName : String := name
  /-- Who may change the name: nobody. -/
  nameWritePermission : Nat := 0
  notificationQueueSize : Nat := 3
deriving DecidableEq, Repr

/-! ### Advertising -/

inductive AdvertisingFlag where
  | generalDiscovery
  | lowEnergyOnly
deriving DecidableEq, Repr

structure AdvertisingData where
  flags : List AdvertisingFlag := []
  /-- The complete list of its services, if it is given. -/
  services : Option (List Uuid) := none
  fullName : Option String := none
  shortName : Option String := none
deriving DecidableEq, Repr

/-- How the device advertises. -/
structure Advertisement where
  /-- What is sent again and again. -/
  advertised : AdvertisingData
  /-- What is sent to a peer that asks for more. -/
  scanned : AdvertisingData
  /-- The time between two advertisements, in units of 0.625 ms. -/
  interval : Nat
deriving DecidableEq, Repr

/-- What the device advertises while it waits for a peer. -/
def advertisement : Advertisement where
  advertised :=
    { flags := [.generalDiscovery, .lowEnergyOnly]
      services := some [serviceUuid]
      shortName := some shortName }
  scanned := { fullName := some name }
  interval := 75

end Device

end FirmwareUpdate
