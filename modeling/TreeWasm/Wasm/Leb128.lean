import TreeWasm.Fault

/-! # Variable-length integers

Integers in groups of seven bits, lowest first; the high bit of a byte says that another follows.
-/

namespace TreeWasm.Wasm.Leb128

/-- The shortest encoding of a natural number. -/
def unsigned (n : Nat) : List UInt8 :=
  if n < 128 then [n.toUInt8] else (n % 128 + 128).toUInt8 :: unsigned (n / 128)

/-- The shortest encoding of an integer: bit 6 of the last byte is the sign. -/
def signed (v : Int) : List UInt8 :=
  let low := (v % 128).toNat
  let rest := v / 128
  if (rest = 0 ∧ low < 64) ∨ (rest = -1 ∧ 64 ≤ low) then [low.toUInt8]
  else (low + 128).toUInt8 :: signed rest
  termination_by v.natAbs
  decreasing_by omega

/-- Reads at most `limit` bytes: the value of their groups and how many bytes were used. -/
def readGroups : (limit : Nat) → List UInt8 → Except ModuleFault (Nat × Nat)
  | 0, _ => .error .truncatedInteger
  | _, [] => .error .truncatedInteger
  | limit + 1, b :: rest =>
    if b < 128 then .ok (b.toNat, 1)
    else
      match readGroups limit rest with
      | .ok (value, used) => .ok (b.toNat % 128 + 128 * value, used + 1)
      | .error fault => .error fault

/-- Reads an unsigned integer of at most five bytes, modulo 2 ^ 32. -/
def read (bytes : List UInt8) : Except ModuleFault (Nat × Nat) :=
  (readGroups 5 bytes).map (fun (value, used) => (value % 0x100000000, used))

end TreeWasm.Wasm.Leb128
