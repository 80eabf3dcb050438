import TreeWasm.Text.Padding
import TreeWasm.Text.Printable

/-! # Quoted text

A text between double quotes. A quote and a backslash are escaped, the usual control characters
have letters, and characters that do not print are written by their number.
-/

namespace TreeWasm.Text

def escape (c : Char) : String :=
  let n := c.toNat
  if c = '"' then "\\\""
  else if c = '\\' then "\\\\"
  else if n = 7 then "\\a"
  else if n = 8 then "\\b"
  else if n = 9 then "\\t"
  else if n = 10 then "\\n"
  else if n = 11 then "\\v"
  else if n = 12 then "\\f"
  else if n = 13 then "\\r"
  else if isPrintable c then c.toString
  else if n < 0x80 then "\\x" ++ hex 2 n
  else if n < 0x10000 then "\\u" ++ hex 4 n
  else "\\U" ++ hex 8 n

def quote (text : String) : String :=
  "\"" ++ text.foldl (fun out c => out ++ escape c) "" ++ "\""

def quoteChar (c : Char) : String :=
  let inner := if c = '\'' then "\\'" else if c = '"' then "\"" else escape c
  "'" ++ inner ++ "'"

end TreeWasm.Text
