/-!
# Hexadecimal text

Numbers are written after `0x`, padded with zeros to a least number of digits.
Addresses use upper-case digits; sizes and raw bounds use lower-case ones.
-/

namespace EarlyMemory.Hex

def digits (value : Nat) : List Char :=
  Nat.toDigits 16 value

def padded (width : Nat) (digits : List Char) : List Char :=
  List.replicate (width - digits.length) '0' ++ digits

def lower (width value : Nat) : String :=
  "0x" ++ String.ofList (padded width (digits value))

def upper (width value : Nat) : String :=
  "0x" ++ String.ofList ((padded width (digits value)).map Char.toUpper)

end EarlyMemory.Hex
