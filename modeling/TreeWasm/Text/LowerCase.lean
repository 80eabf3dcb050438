/-! # Small letters

Words in small letters, exact in their plain Latin letters and in their number of bytes. A letter
beyond those is left as it is when its small form has as many bytes: next to plain Latin text the
two cannot be told apart.
-/

namespace TreeWasm.Text

/-- Capital letters whose small form has another number of bytes, each with that form. -/
def unevenCapitals : List (Nat × Nat) :=
  [(0x130, 0x69), (0x23A, 0x2C65), (0x23E, 0x2C66), (0x1E9E, 0xDF), (0x2126, 0x3C9),
    (0x212A, 0x6B), (0x212B, 0xE5), (0x2C62, 0x26B), (0x2C64, 0x27D), (0x2C6D, 0x251),
    (0x2C6E, 0x271), (0x2C6F, 0x250), (0x2C70, 0x252), (0x2C7E, 0x23F), (0x2C7F, 0x240),
    (0xA78D, 0x265), (0xA7AA, 0x266), (0xA7AB, 0x25C), (0xA7AC, 0x261), (0xA7AD, 0x26C),
    (0xA7AE, 0x26A), (0xA7B0, 0x29E), (0xA7B1, 0x287), (0xA7B2, 0x29D), (0xA7C5, 0x282),
    (0xA7CB, 0x264), (0xA7DC, 0x19B)]

def lowerChar (c : Char) : Char :=
  match unevenCapitals.lookup c.toNat with
  | some small => Char.ofNat small
  | none => c.toLower

def lower (text : String) : String := text.map lowerChar

end TreeWasm.Text
