/-!
# Hexadecimal numerals

Addresses, codes and tags are shown as `0x` followed by lower-case digits, padded with zeros to a
width that the message chooses.
-/

namespace FirmwareUpdate

namespace Hexadecimal

/-- The lower-case hexadecimal digits of a number, at least `width` of them. -/
def digits (width n : Nat) : String :=
  String.ofList ((Nat.toDigits 16 n).leftpad width '0')

/-- A number as `0x` and at least `width` lower-case digits. -/
def render (width n : Nat) : String := "0x" ++ digits width n

/-- A number as `0x` and upper-case digits. -/
def renderUpper (n : Nat) : String := "0x" ++ (digits 1 n).map Char.toUpper

example : render 1 0x19000 = "0x19000" := by cbv

example : render 4 8 = "0x0008" := by cbv

example : renderUpper 0x20005ff0 = "0x20005FF0" := by cbv

end Hexadecimal

end FirmwareUpdate
