/-! # Bytes of a text

The UTF-8 bytes of a text, and the text that an arbitrary byte string shows as: a byte that does
not belong to a well-formed character shows as U+FFFD, one for each byte.
-/

namespace TreeWasm.Text

def bytes (text : String) : List UInt8 :=
  text.toUTF8.toList

/-- The number of bytes that a well-formed character starting with this byte has. -/
def sequenceLength (lead : UInt8) : Nat :=
  if lead < 0x80 then 1
  else if lead < 0xC2 then 0
  else if lead < 0xE0 then 2
  else if lead < 0xF0 then 3
  else if lead < 0xF5 then 4
  else 0

/-- The character that a lead byte and its continuation bytes spell, if they are well formed. -/
def decodeSequence (lead : UInt8) (rest : List UInt8) : Option Char :=
  let continues := rest.all (fun b => 0x80 ≤ b && b < 0xC0)
  let lowBits := rest.foldl (fun n b => n * 64 + b.toNat % 64)
  let value :=
    match rest.length with
    | 0 => lead.toNat
    | 1 => lowBits (lead.toNat % 32)
    | 2 => lowBits (lead.toNat % 16)
    | _ => lowBits (lead.toNat % 8)
  let least := match rest.length with | 0 => 0 | 1 => 0x80 | 2 => 0x800 | _ => 0x10000
  if continues && least ≤ value && value.isValidChar then some (Char.ofNat value) else none

/-- The characters that a byte string shows as. -/
def decodeChars : List UInt8 → List Char
  | [] => []
  | lead :: rest =>
    let length := sequenceLength lead
    let tail := rest.take (length - 1)
    match (if length = 0 || tail.length + 1 < length then none else decodeSequence lead tail) with
    | some c => c :: decodeChars (rest.drop (length - 1))
    | none => Char.ofNat 0xFFFD :: decodeChars rest
  termination_by bytes => bytes.length
  decreasing_by all_goals simp only [List.length_drop, List.length_cons] <;> omega

def ofBytes (bytes : List UInt8) : String :=
  String.ofList (decodeChars bytes)

end TreeWasm.Text
