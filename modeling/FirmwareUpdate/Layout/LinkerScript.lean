import FirmwareUpdate.Layout
import FirmwareUpdate.Text.Hexadecimal

/-!
# The linker script

The memory regions of the bootloader as the linker is told them, and the directives that make the
build use the script.
-/

namespace FirmwareUpdate.Layout

/-- The name of the region that holds the address where the bootloader starts. -/
private def startRegion : String := "mbr_uicr_bootloader_addr"

/-- The name of the region that shuts debuggers out. -/
private def protectionRegion : String := "uicr_approtect"

/-- A section that is kept, in a region of the same name. -/
private def keptSection (name : String) : List String :=
  ["    ." ++ name ++ " :  \x7b",
    "        KEEP(*(." ++ name ++ "))",
    "        . = ALIGN(4);",
    "    \x7d > " ++ name]

def linkerScriptLines : List String :=
  let base := Hexadecimal.renderUpper bootloaderBase.toNat
  let retained := Hexadecimal.renderUpper updateRequestAddress.toNat
  let memorySize := updateRequestAddress.toNat - memoryBase.toNat
  ["BASE_BOOTLOADER_ADDR = " ++ base ++ ";",
    "",
    "MEMORY",
    "\x7b",
    "    /* NOTE 1 K = 1 KiBi = 1024 bytes */",
    "    /* The bootloader flash partition runs up to the end of the 192K of flash */",
    "    FLASH (rx) : ORIGIN = 0x00000000 + BASE_BOOTLOADER_ADDR, " ++
      "LENGTH = 192K - BASE_BOOTLOADER_ADDR",
    s!"    RAM : ORIGIN = 0x20000000 + {radioMemorySize}, " ++
      s!"LENGTH = {memorySize} - {radioMemorySize}",
    "    /* Update request left by the application, never initialized by the bootloader */",
    s!"    RETAINED (rw) : ORIGIN = {retained}, LENGTH = {updateRequestSize}",
    "    " ++ startRegion ++ " (r) : ORIGIN = 0x10001014, LENGTH = 0x4",
    "    " ++ protectionRegion ++ " (r) : ORIGIN = 0x10001208, LENGTH = 0x4",
    "\x7d",
    "",
    "SECTIONS \x7b"] ++
  keptSection protectionRegion ++ [""] ++ keptSection startRegion ++
  ["\x7d;"]

/-- The script. Each line stands on its own and is indented, but for blank ones. -/
def linkerScript : String :=
  let margin := "        "
  let indented := linkerScriptLines.map fun line => if line = "" then "" else margin ++ line
  "\n" ++ "\n".intercalate indented ++ "\n" ++ margin

/-- The directives of the build, with the directory that the script is in. -/
def buildDirectives (directory : String) : List String :=
  ["cargo:rustc-link-search=" ++ directory,
    "cargo:rerun-if-changed=build.rs",
    "cargo:rustc-link-arg-bins=--nmagic",
    "cargo:rustc-link-arg-bins=-Tlink.x",
    "cargo:rustc-link-arg-bins=-Tdefmt.x"]

end FirmwareUpdate.Layout
