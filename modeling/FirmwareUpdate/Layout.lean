/-!
# Memory layout

Where the application, the bootloader, the content key and the update request live, and how large
an erase unit of the flash is.
-/

namespace FirmwareUpdate.Layout

/-- The start of the application region; the boot record of the application stands here. -/
def appBase : UInt32 := 0x19000

/-- The start of the bootloader, which is the end of the application region. -/
def bootloaderBase : UInt32 := 0x26000

def flashEnd : UInt32 := 0x30000

/-- The size of an erase unit. -/
def pageSize : Nat := 4096

def contentKeyAddress : UInt32 := 0x10001080

def contentKeySize : Nat := 32

/-- Where the application leaves an update request: the last bytes of memory, which a reset does
not clear. -/
def updateRequestAddress : UInt32 := 0x20005ff0

def updateRequestSize : Nat := 16

def memoryBase : UInt32 := 0x20000000

/-- The bytes at the start of memory that the radio stack keeps for itself. -/
def radioMemorySize : Nat := 10648

end FirmwareUpdate.Layout
