import LispCore.Text.Hex
import LispCore.Text.Hidden
/-!
Quoted text, as diagnostics show a piece of input: in double quotes, with short escapes for tab,
carriage return, newline, NUL, the quote and the backslash, and `\u{hex}` for every hidden
character. The apostrophe stands for itself.
-/

namespace LispCore.Text

def quoteChar (c : Char) : String :=
  if c = '\x00' then "\\0"
  else if c = '\t' then "\\t"
  else if c = '\r' then "\\r"
  else if c = '\n' then "\\n"
  else if c = '"' then "\\\""
  else if c = '\\' then "\\\\"
  else if isHidden c then "\\u\x7b" ++ hex c.toNat ++ "\x7d"
  else c.toString

def quoted (s : String) : String :=
  "\"" ++ s.toList.foldl (fun out c => out ++ quoteChar c) "" ++ "\""

end LispCore.Text
