/-! # Fixed-width text

Padding to a width in characters, and numbers in lower-case hexadecimal.
-/

namespace TreeWasm.Text

/-- Adds blanks at the end until the text has the given number of characters. -/
def padRight (width : Nat) (text : String) : String :=
  text.pushn ' ' (width - text.length)

/-- Adds a character at the front until the text has the given number of characters. -/
def padLeft (width : Nat) (fill : Char) (text : String) : String :=
  "".pushn fill (width - text.length) ++ text

/-- Lower-case hexadecimal digits, at least `width` of them. -/
def hex (width : Nat) (n : Nat) : String :=
  padLeft width '0' (String.ofList (Nat.toDigits 16 n))

def hexBytes (bytes : List UInt8) : String :=
  bytes.foldl (fun text b => text ++ hex 2 b.toNat) ""

end TreeWasm.Text
