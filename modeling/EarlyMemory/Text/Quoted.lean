import EarlyMemory.Text.Hex
import EarlyMemory.Text.Printable

/-!
# Quoted text

Text from outside stands in records between double quotes. Quotes, backslashes
and the common controls are written with a backslash, other characters that
would not show by their code point.
-/

namespace EarlyMemory.Text

def quoteCharacter (character : Char) : List Char :=
  match character with
  | '\x00' => ['\\', '0']
  | '\t' => ['\\', 't']
  | '\r' => ['\\', 'r']
  | '\n' => ['\\', 'n']
  | '\\' => ['\\', '\\']
  | '"' => ['\\', '"']
  | _ =>
      if isPrintable character then
        [character]
      else
        ['\\', 'u', '\x7b'] ++ Hex.digits character.toNat ++ ['\x7d']

def quote (text : String) : String :=
  String.ofList ('"' :: text.toList.flatMap quoteCharacter ++ ['"'])

end EarlyMemory.Text
